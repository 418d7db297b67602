import ManagedGraph.Proofs.Pom.Accepted

/-!
# Truncated texts

Reading a text to its end makes sure that its tags are nested, but not that all elements are
closed. So of the beginnings of a text that holds a document those are rejected that end within a
piece of markup or within a reference, and no others (`Document.nested_but_for_unclosed`).
-/

namespace ManagedGraph

namespace Xml

variable {s t part more : List Char} {item : Item}

/-! ## Cuts within markup -/

/-- A piece of markup without its end is a fault. -/
theorem exists_fault_of_isMarkup (h : IsMarkup (part ++ more) item) (hmore : more ≠ []) :
    ∃ fault, markup part = .error fault := by
  cases hpart : markup part with
  | error fault => exact ⟨fault, rfl⟩
  | ok read =>
      obtain ⟨found, rest⟩ := read
      obtain ⟨piece, rfl, hpiece⟩ := exists_isMarkup hpart
      -- the shorter piece would be read there too
      have hshort := hpiece (rest ++ more)
      have hlong := h []
      rw [List.append_nil] at hlong
      rw [← List.append_assoc, hlong] at hshort
      have hnil : [] = rest ++ more := (Prod.mk.inj (Except.ok.inj hshort)).2
      exact absurd (List.append_eq_nil_iff.1 hnil.symm).2 hmore

/-- A cut within a piece of markup: its beginning stands before the cut, and its end after it. -/
structure Cut (s t before part more : List Char) (item : Item) : Prop where
  eq_before : s = before ++ '<' :: part
  eq_after : more <+: t
  ne_nil : more ≠ []
  readable : (items before).fault = none
  isMarkup : IsMarkup (part ++ more) item

/-- A text is not read to its end if it ends within a piece of markup. -/
theorem Cut.exists_fault {before : List Char} (h : Cut s t before part more item) :
    ∃ fault, (items s).fault = some fault := by
  obtain ⟨base, its, run, rfl, hbase, hrun⟩ := exists_complete h.readable
  obtain ⟨fault, hfault⟩ := exists_fault_of_isMarkup h.isMarkup h.ne_nil
  have hend : items ('<' :: part) = .ended (some fault) :=
    items_of_fault (List.dropWhile_cons_of_neg (by decide)) hfault
  rw [h.eq_before, List.append_assoc, hbase, items_text_append hrun endsText_cons, hend]
  exact ⟨fault, rfl⟩

/-- A cut of the end of a text is a cut of the whole. -/
theorem Cut.append_left {base before : List Char} (h : Cut s t before part more item)
    (hreadable : (items (base ++ before)).fault = none) :
    Cut (base ++ s) t (base ++ before) part more item where
  eq_before := by rw [h.eq_before, List.append_assoc]
  eq_after := h.eq_after
  ne_nil := h.ne_nil
  readable := hreadable
  isMarkup := h.isMarkup

/-- If a text is read to its end, and a beginning of it is not, then that ends within a piece of
markup. -/
theorem exists_cut (h : (items s).fault ≠ none) (hwhole : (items (s ++ t)).fault = none) :
    ∃ before part more item, Cut s t before part more item := by
  have hparts (s : List Char) : s = s.takeWhile isBlank ++ s.dropWhile isBlank :=
    List.takeWhile_append_dropWhile.symm
  have hblanks (s : List Char) : IsComplete (s.takeWhile isBlank) [] :=
    isComplete_of_blank fun _ => List.mem_takeWhile_imp
  -- both texts are read alike up to the piece of markup in which the first one ends
  fun_induction items s with
  | case1 => exact absurd rfl h
  | case2 s rest fault hm hs =>
      have hs' := hparts s
      rw [hs] at hs'
      have hstart : items (s ++ t) = items ('<' :: (rest ++ t)) := by
        rw [hs', List.append_assoc, hblanks s, Reading.prepend_nil, List.cons_append]
      have hhead : ('<' :: (rest ++ t)).dropWhile isBlank = '<' :: (rest ++ t) :=
        List.dropWhile_cons_of_neg (by decide)
      cases hwholeMarkup : markup (rest ++ t) with
      | error fault =>
          rw [hstart, items_of_fault hhead hwholeMarkup] at hwhole
          exact absurd hwhole (by simp [Reading.ended])
      | ok read =>
          obtain ⟨item, after⟩ := read
          obtain ⟨piece, hpiece, hmarkup⟩ := exists_isMarkup hwholeMarkup
          rcases List.append_eq_append_iff.1 hpiece with ⟨more, rfl, rfl⟩ | ⟨more, rfl, -⟩
          · -- the cut is within the piece, unless that is read before it
            have hne : more ≠ [] := by
              rintro rfl
              rw [List.append_nil] at hmarkup
              have hrest := hmarkup []
              rw [List.append_nil] at hrest
              exact absurd (hrest.symm.trans hm) (by simp)
            exact ⟨s.takeWhile isBlank, rest, more, item, hs', List.prefix_append more after, hne,
              by rw [(hblanks s).items_eq], hmarkup⟩
          · exact absurd ((hmarkup more).symm.trans hm) (by simp)
  | case3 s rest item after hm hs ih =>
      obtain ⟨piece, rfl, hpiece⟩ := exists_isMarkup hm
      have hfront := (hblanks s).append hpiece.isComplete
      have hs' : s = s.takeWhile isBlank ++ '<' :: piece ++ after := by
        have hs' := hparts s
        rw [hs] at hs'
        simpa using hs'
      rw [hs', List.append_assoc, hfront] at hwhole
      obtain ⟨before, part, more, last, hcut⟩ := ih h hwhole
      have hreadable : (items (s.takeWhile isBlank ++ '<' :: piece ++ before)).fault = none := by
        rw [hfront, Reading.fault_prepend, hcut.readable]
      have hcut' := hcut.append_left hreadable
      rw [← hs'] at hcut'
      exact ⟨_, part, more, last, hcut'⟩
  | case4 s c rest hs hc ih =>
      obtain ⟨front, hs', hfront⟩ := exists_text_of_dropWhile hs hc
      -- without markup after it the text would be read to its end
      generalize htail : rest.dropWhile isText = tail at h ih hs'
      have hends : EndsText tail := htail ▸ endsText_dropWhile
      cases tail with
      | nil =>
          rw [items_of_blank rfl] at h
          exact absurd rfl h
      | cons d tail =>
          obtain rfl := hends.eq_of_cons
          rw [hs', List.append_assoc, List.cons_append, items_text_append hfront endsText_cons,
            Reading.fault_prepend] at hwhole
          obtain ⟨before, part, more, last, hcut⟩ := ih h hwhole
          have hbefore : EndsText before := by
            cases before with
            | nil => rfl
            | cons d before =>
                obtain ⟨rfl, -⟩ := List.cons.inj hcut.eq_before
                exact endsText_cons
          have hreadable : (items (front ++ before)).fault = none := by
            rw [items_text_append hfront hbefore, Reading.fault_prepend, hcut.readable]
          have hcut' := hcut.append_left hreadable
          rw [← hs'] at hcut'
          exact ⟨_, part, more, last, hcut'⟩

/-- A text that is cut within a piece of markup. -/
def CutsMarkup (s t : List Char) : Prop :=
  ∃ before part more item, Cut s t before part more item

/-- A beginning of a text that is read to its end is so too, unless the cut is within markup. -/
theorem fault_eq_none_iff (hwhole : (items (s ++ t)).fault = none) :
    (items s).fault = none ↔ ¬ CutsMarkup s t := by
  constructor
  · rintro h ⟨before, part, more, item, hcut⟩
    obtain ⟨fault, hfault⟩ := hcut.exists_fault
    rw [h] at hfault
    exact absurd hfault (by simp)
  · intro h
    by_contra hfault
    exact h (exists_cut hfault hwhole)

/-! ## Cuts within references -/

/-- A text that ends within a reference. -/
def CutsReference (s : List Char) : Prop :=
  ∃ before name, s = before ++ '&' :: name ∧ (items before).fault = none ∧
    ∀ c ∈ name, isText c = true ∧ isEntityName c = true

theorem CutsReference.not_decodes (h : CutsReference s) : ¬ Decodes (items s).items := by
  obtain ⟨before, name, rfl, hread, hname⟩ := h
  obtain ⟨base, its, run, rfl, hbase, hrun⟩ := exists_complete hread
  have htext : ∀ c ∈ run ++ '&' :: name, isText c = true := by
    intro c hc
    rcases List.mem_append.1 hc with hc | hc
    · exact hrun c hc
    · rcases List.mem_cons.1 hc with rfl | hc
      · decide
      · exact (hname c hc).1
  rw [List.append_assoc, hbase.items_append_run htext]
  intro hdecodes
  obtain ⟨value, hvalue⟩ := decodes_textItems.1 (decodes_append.1 hdecodes).2
  exact hvalue.not_dangles ⟨run, name, rfl, List.all_eq_true.2 fun c hc => (hname c hc).2⟩

/-- The texts before a cut can be decoded, unless the cut is within a reference. -/
theorem decodes_iff (hread : (items s).fault = none) (hwhole : Decodes (items (s ++ t)).items) :
    Decodes (items s).items ↔ ¬ CutsReference s := by
  constructor
  · intro hdecodes hcut
    exact hcut.not_decodes hdecodes
  intro hcut
  obtain ⟨base, its, run, rfl, hbase, hrun⟩ := exists_complete hread
  -- the text at the cut goes on after it
  rw [items_append_text hbase hrun, Reading.items_prepend] at hwhole
  obtain ⟨hits, htext⟩ := decodes_append.1 (decodes_append.1 hwhole).1
  obtain ⟨value, hvalue⟩ := decodes_textItems.1 htext
  rw [hbase.items_append_run hrun]
  refine decodes_append.2 ⟨hits, decodes_textItems.2 ?_⟩
  refine hvalue.decodes_or_dangles.resolve_right ?_
  rintro ⟨before, name, rfl, hname⟩
  refine hcut ⟨base ++ before, name, by simp, ?_, ?_⟩
  · rw [hbase.items_append_run fun c hc => hrun c (by simp [hc])]
  · intro c hc
    exact ⟨hrun c (by simp [hc]), List.all_eq_true.1 hname c hc⟩

/-- Tags are nested before a cut as they are in the whole. -/
theorem exists_openAfter {openNames : List String} (hread : (items s).fault = none)
    (hwhole : openAfter [] (items (s ++ t)).items = some openNames) :
    ∃ names, openAfter [] (items s).items = some names := by
  obtain ⟨base, its, run, rfl, hbase, hrun⟩ := exists_complete hread
  rw [List.append_assoc, hbase, Reading.items_prepend, openAfter_append] at hwhole
  obtain ⟨names, hnames, -⟩ := Option.bind_eq_some_iff.1 hwhole
  refine ⟨names, ?_⟩
  rw [hbase.items_append_run hrun, openAfter_append, hnames, Option.bind_some,
    openAfter_textItems]

/-- Nothing cannot end within anything. -/
theorem not_cuts_nil : ¬ (CutsMarkup [] t ∨ CutsReference []) := by
  rintro (⟨before, part, more, item, hcut⟩ | ⟨before, name, h, -⟩)
  · exact absurd hcut.eq_before (by simp)
  · exact absurd h (by simp)

end Xml

namespace Pom

open Xml

/-! ## What is gathered before a cut -/

/-- The declarations of a document are the first ones of another. -/
structure Document.Begins (d whole : Document) : Prop where
  dependencies : d.dependencies <+: whole.dependencies
  management : d.management <+: whole.management

theorem Document.Begins.refl (d : Document) : d.Begins d :=
  ⟨List.prefix_rfl, List.prefix_rfl⟩

namespace Gathering

variable {d : Document} {g g' : Gathering} {its : List Item} {openNames : List String}

/-- The end of an element adds to the end of a list, if at all. -/
theorem begins_record (h : d.Begins g.document) : d.Begins g.record.document := by
  have hown (name text : String) : d.Begins (setOwn g.document name text) := by
    unfold setOwn
    split <;> exact ⟨h.dependencies, h.management⟩
  unfold record
  split
  · exact ⟨h.dependencies, h.management⟩
  · exact h
  · split
    · unfold closeInExclusion
      split <;> exact h
    · split
      · unfold closeInDeclaration
        dsimp only
        split
        · exact ⟨h.dependencies, h.management.trans (List.prefix_append _ _)⟩
        · split
          · exact ⟨h.dependencies.trans (List.prefix_append _ _), h.management⟩
          · exact h
      · split
        · unfold closeInParent
          split_ifs <;> exact ⟨h.dependencies, h.management⟩
        · split
          · exact hown _ _
          · exact h

theorem begins_of_read (hopen : openAfter g.path its = some openNames) (h : g.read its = .ok g') :
    g.document.Begins g'.document := by
  have hpath : g.path = g.path ++ [] := by rw [List.append_nil]
  refine (read_induction (P := fun later => g.document.Begins later.document)
    (fun _ _ hg => hg) ?_ (fun _ _ _ _ hg => begins_record hg) hopen hpath
    (Document.Begins.refl g.document) h).1
  intro later name _ hg
  rw [document_opening]
  exact hg

/-- Text alone adds nothing to a document. -/
theorem document_of_read_textItems {run : List Char} (h : g.read (textItems run) = .ok g') :
    g'.document = g.document := by
  rcases textItems_cases run with hitems | ⟨raw, hitems⟩
  · rw [hitems] at h
    obtain rfl := Except.ok.inj h
    rfl
  · rw [hitems] at h
    cases hdecode : decode raw with
    | error fault =>
        rw [read_text_error hdecode] at h
        exact absurd h (by simp)
    | ok value =>
        rw [read_text hdecode] at h
        obtain rfl := Except.ok.inj h
        rfl

/-- What is gathered before a cut is the beginning of what is gathered from the whole. -/
theorem begins_of_cut {s t : List Char} (hread : (items s).fault = none)
    (h : start.read (items s).items = .ok g)
    (hopen : openAfter [] (items (s ++ t)).items = some openNames)
    (hwhole : start.read (items (s ++ t)).items = .ok g') : g.document.Begins g'.document := by
  obtain ⟨base, its, run, rfl, hbase, hrun⟩ := exists_complete hread
  rw [hbase.items_append_run hrun] at h
  rw [List.append_assoc, hbase, Reading.items_prepend] at hopen hwhole
  -- the part of a text before the cut is the only item that may differ
  obtain ⟨atCut, hcut, htext⟩ := exists_of_read_append h
  obtain ⟨atCut', hcut', hrest⟩ := exists_of_read_append hwhole
  obtain rfl : atCut = atCut' := Except.ok.inj (hcut.symm.trans hcut')
  rw [openAfter_append] at hopen
  obtain ⟨names, hnames, hopen⟩ := Option.bind_eq_some_iff.1 hopen
  have hpath : atCut.path = names := path_of_read hnames rfl hcut
  rw [document_of_read_textItems htext]
  exact begins_of_read (hpath ▸ hopen) hrest

end Gathering

namespace Document

theorem parse_empty : parse "" = .ok blank := by
  have hitems : document "" = ⟨[], none⟩ := items_of_blank rfl
  rw [parse_eq_ok_iff, hitems]
  exact ⟨rfl, ⟨[], rfl⟩, Gathering.start, rfl, rfl⟩

theorem exists_error_iff {text : String} :
    (∃ fault, parse text = .error fault) ↔ ¬ ∃ d, parse text = .ok d := by
  cases parse text <;> simp

/-- An accepted text has nested tags, but its last elements may be left open. All of them are
closed exactly if as many tags close elements as open them. So the beginning of an accepted text is
accepted unless it ends within a piece of markup or within a reference, and what it declares comes
first in the whole text. -/
theorem nested_but_for_unclosed {text : String} {d : Document} (h : parse text = .ok d) :
    (∃ unclosed, LeavesOpen unclosed (document text).items) ∧
      (Balanced (document text).items ↔
        (document text).items.countP Item.isClosing =
          (document text).items.countP Item.isOpening) ∧
      ∀ before more, text = before ++ more →
        ((∃ fault, parse before = .error fault) ↔
          CutsMarkup (withoutMark before.toList) more.toList ∨
            CutsReference (withoutMark before.toList)) ∧
        ∀ part, parse before = .ok part → part.Begins d := by
  obtain ⟨hfault, ⟨openNames, hopen⟩, whole, hwhole, rfl⟩ := parse_eq_ok_iff.1 h
  have hleaves := leavesOpen_of_openAfter hopen
  refine ⟨⟨_, hleaves⟩, ⟨fun hbalanced => hbalanced.countP_eq.symm, hleaves.balanced_of_countP⟩, ?_⟩
  rintro before more rfl
  by_cases hempty : before.toList = []
  · obtain rfl : before = "" := String.toList_eq_nil_iff.1 hempty
    rw [parse_empty]
    refine ⟨iff_of_false (by simp) not_cuts_nil, ?_⟩
    intro part hpart
    obtain rfl := Except.ok.inj hpart
    exact ⟨List.nil_prefix, List.nil_prefix⟩
  · rw [document_eq, String.toList_append, withoutMark_append (Or.inl hempty)]
      at hfault hopen hwhole
    have hdecodes := Gathering.exists_read_iff.1 ⟨whole, hwhole⟩
    constructor
    · rw [exists_error_iff, exists_parse_iff, document_eq, not_iff_comm, not_or,
        ← fault_eq_none_iff hfault]
      constructor
      · rintro ⟨hread, hreference⟩
        exact ⟨hread, exists_openAfter hread hopen, (decodes_iff hread hdecodes).2 hreference⟩
      · rintro ⟨hread, -, hpart⟩
        exact ⟨hread, (decodes_iff hread hdecodes).1 hpart⟩
    · intro part hpart
      obtain ⟨hread, -, atCut, hcut, rfl⟩ := parse_eq_ok_iff.1 hpart
      rw [document_eq] at hread hcut
      exact Gathering.begins_of_cut hread hcut hopen hwhole

namespace Sample

/-- A project that states its group and is not closed. -/
def cut : String := "<project><groupId>org</groupId>"

def org : Document :=
  { blank with group := some "org" }

theorem nested_but_for_unclosed_cut :
    parse (cut ++ "</project>") = .ok org ∧ Balanced (document (cut ++ "</project>")).items ∧
      parse cut = .ok org ∧
      ¬ (CutsMarkup (withoutMark cut.toList) "</project>".toList ∨
        CutsReference (withoutMark cut.toList)) ∧
      org.Begins org := by
  have hwhole : parse (cut ++ "</project>") = .ok org := parse_of_toOption (by decide +kernel)
  have hcut : parse cut = .ok org := parse_of_toOption (by decide +kernel)
  obtain ⟨-, hclosed, hbeginnings⟩ := nested_but_for_unclosed hwhole
  obtain ⟨hcuts, hbegins⟩ := hbeginnings cut "</project>" rfl
  refine ⟨hwhole, hclosed.2 (by decide +kernel), hcut, ?_, hbegins org hcut⟩
  rw [← hcuts, hcut]
  simp

/-- A project that is not closed is accepted, and gives a document. -/
theorem accepts_unclosed : parse cut = .ok org ∧ ¬ Balanced (document cut).items := by
  refine ⟨parse_of_toOption (by decide +kernel), ?_⟩
  intro h
  have hcount := h.countP_eq
  revert hcount
  decide +kernel

end Sample

end Document

end Pom

end ManagedGraph
