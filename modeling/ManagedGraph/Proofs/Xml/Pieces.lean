import ManagedGraph.Proofs.Xml.CharacterData

/-!
# Pieces of an XML text

What a piece of markup is read as does not depend on the text after it (`exists_isMarkup`). A text
that is read without a fault consists of complete pieces, which are read alike whatever follows
(`IsComplete`), and of text that more text may continue (`exists_complete`).
-/

namespace ManagedGraph.Xml

/-- A reading with items in front. -/
def Reading.prepend {α : Type} (items : List α) (r : Reading α) : Reading α :=
  ⟨items ++ r.items, r.fault⟩

namespace Reading

variable {α : Type} {r : Reading α} {front more : List α}

@[simp] theorem prepend_nil : r.prepend [] = r := rfl

@[simp] theorem prepend_prepend : (r.prepend more).prepend front = r.prepend (front ++ more) := by
  simp [prepend]

@[simp] theorem items_prepend : (r.prepend front).items = front ++ r.items := rfl

@[simp] theorem fault_prepend : (r.prepend front).fault = r.fault := rfl

end Reading

variable {s rest body piece : List Char} {item : Item}

/-! ## Markup -/

/-- A text that a reader takes up as one item, whatever follows it. -/
def Takes (read : List Char → Step) (piece : List Char) (item : Item) : Prop :=
  ∀ after, read (piece ++ after) = .ok (item, after)

/-- A piece of markup, without the `<` in front. -/
def IsMarkup (piece : List Char) (item : Item) : Prop :=
  Takes markup piece item

/-- A tag ends at the same place whatever follows it. -/
theorem splitTag_append {quote : Option Char} (h : splitTag quote s = some (body, rest))
    (after : List Char) : splitTag quote (body ++ '>' :: after) = some (body, after) := by
  induction s generalizing quote body with
  | nil => cases quote <;> simp [splitTag] at h
  | cons c tail ih =>
      cases quote with
      | none =>
          unfold splitTag at h
          split at h
          · obtain ⟨rfl, -⟩ : [] = body ∧ tail = rest := by simpa using h
            rfl
          · rename_i hc
            simp only [Option.map_eq_some_iff, Prod.mk.injEq, Prod.exists] at h
            rcases h with ⟨b, r, hbr, rfl, rfl⟩
            rw [List.cons_append, splitTag, if_neg hc, ih hbr]
            rfl
      | some q =>
          unfold splitTag at h
          simp only [Option.map_eq_some_iff, Prod.mk.injEq, Prod.exists] at h
          rcases h with ⟨b, r, hbr, rfl, rfl⟩
          rw [List.cons_append, splitTag, ih hbr]
          rfl

theorem splitDoctype_append {depth : Nat} (h : splitDoctype depth s = some (body, rest))
    (after : List Char) : splitDoctype depth (body ++ '>' :: after) = some (body, after) := by
  induction s generalizing depth body with
  | nil => simp [splitDoctype] at h
  | cons c tail ih =>
      unfold splitDoctype at h
      split at h
      · rename_i hc
        split at h
        · obtain ⟨rfl, -⟩ : [] = body ∧ tail = rest := by simpa using h
          rfl
        · simp only [Option.map_eq_some_iff, Prod.mk.injEq, Prod.exists] at h
          rcases h with ⟨b, r, hbr, rfl, rfl⟩
          simp only [List.cons_append, splitDoctype, if_pos hc, ih hbr]
          rfl
      · rename_i hc
        simp only [Option.map_eq_some_iff, Prod.mk.injEq, Prod.exists] at h
        rcases h with ⟨b, r, hbr, rfl, rfl⟩
        rw [List.cons_append]
        unfold splitDoctype
        rw [if_neg hc, ih hbr]
        rfl

theorem exists_takes_comment (h : comment s = .ok (item, rest)) :
    ∃ piece, s = piece ++ rest ∧ Takes comment piece item := by
  unfold comment at h
  split at h
  · split at h
    · rename_i body content _ hbreak
      simp only [Except.ok.injEq, Prod.mk.injEq] at h
      rcases h with ⟨rfl, rfl⟩
      obtain ⟨hs, hfirst⟩ := (Text.breakOn_eq_some_iff (by simp)).1 hbreak
      refine ⟨'-' :: (content ++ ['-', '-', '>']), by rw [hs]; rfl, ?_⟩
      intro after
      rw [List.cons_append, comment, Text.breakOn_append (by simp) hfirst]
    · exact absurd h (by simp)
  · exact absurd h (by simp)

theorem exists_takes_cdata (h : cdata s = .ok (item, rest)) :
    ∃ piece, s = piece ++ rest ∧ Takes cdata piece item := by
  unfold cdata at h
  split at h
  · split at h
    · rename_i body content _ hbreak
      simp only [Except.ok.injEq, Prod.mk.injEq] at h
      rcases h with ⟨rfl, rfl⟩
      obtain ⟨hs, hfirst⟩ := (Text.breakOn_eq_some_iff (by simp)).1 hbreak
      refine ⟨'C' :: 'D' :: 'A' :: 'T' :: 'A' :: '[' :: (content ++ [']', ']', '>']),
        by rw [hs]; rfl, ?_⟩
      intro after
      simp only [List.cons_append]
      rw [cdata, Text.breakOn_append (by simp) hfirst]
    · exact absurd h (by simp)
  · exact absurd h (by simp)

theorem exists_takes_doctype (h : doctype s = .ok (item, rest)) :
    ∃ piece, s = piece ++ rest ∧ Takes doctype piece item := by
  unfold doctype at h
  split at h
  · rename_i body _ hsplit
    split at h
    · rename_i hkeyword
      split at h
      · exact absurd h (by simp)
      · rename_i hname
        simp only [Except.ok.injEq, Prod.mk.injEq] at h
        rcases h with ⟨rfl, rfl⟩
        refine ⟨body ++ ['>'], by rw [eq_append_of_splitDoctype hsplit]; simp, ?_⟩
        intro after
        rw [List.append_assoc, List.singleton_append, doctype, splitDoctype_append hsplit]
        simp only [hkeyword, if_true, hname]
        rfl
    · exact absurd h (by simp)
  · exact absurd h (by simp)

theorem exists_takes_instruction (h : instruction s = .ok (item, rest)) :
    ∃ piece, s = piece ++ rest ∧ Takes instruction piece item := by
  unfold instruction at h
  split at h
  · exact absurd h (by simp)
  · rename_i hhead
    split at h
    · rename_i content _ hbreak
      simp only [Except.ok.injEq, Prod.mk.injEq] at h
      rcases h with ⟨rfl, rfl⟩
      obtain ⟨hs, hfirst⟩ := (Text.breakOn_eq_some_iff (by simp)).1 hbreak
      refine ⟨content ++ ['?', '>'], hs, ?_⟩
      intro after
      have hstart : (content ++ ['?', '>'] ++ after).head? = s.head? := by
        rw [hs]
        cases content <;> rfl
      rw [instruction, hstart, if_neg hhead, Text.breakOn_append (by simp) hfirst]
    · exact absurd h (by simp)

theorem exists_takes_closingTag (h : closingTag s = .ok (item, rest)) :
    ∃ piece, s = piece ++ rest ∧ Takes closingTag piece item := by
  unfold closingTag at h
  split at h
  · rename_i body _ hsplit
    simp only [Except.ok.injEq, Prod.mk.injEq] at h
    rcases h with ⟨rfl, rfl⟩
    refine ⟨body ++ ['>'], by rw [eq_append_of_splitTag hsplit]; simp, ?_⟩
    intro after
    rw [List.append_assoc, List.singleton_append, closingTag, splitTag_append hsplit]
  · exact absurd h (by simp)

theorem exists_takes_openingTag (h : openingTag s = .ok (item, rest)) :
    ∃ piece, s = piece ++ rest ∧ Takes openingTag piece item := by
  unfold openingTag at h
  split at h
  · rename_i body _ hsplit
    refine ⟨body ++ ['>'], ?_, ?_⟩
    · rw [eq_append_of_splitTag hsplit]
      split at h <;>
      · simp only [Except.ok.injEq, Prod.mk.injEq] at h
        simp [h.2]
    · intro after
      rw [List.append_assoc, List.singleton_append, openingTag, splitTag_append hsplit]
      dsimp only
      split at h <;>
      · rename_i hempty
        simp only [Except.ok.injEq, Prod.mk.injEq] at h
        simp [hempty, h.1]
  · exact absurd h (by simp)

/-- What follows a `<` opens or states an element, unless its first character marks other markup. -/
theorem markup_of_ne {c : Char} (hbang : c ≠ '!') (hquestion : c ≠ '?') (hslash : c ≠ '/') :
    markup (c :: s) = openingTag (c :: s) := by
  rw [markup.eq_def]
  split <;> simp_all

/-- Markup is a piece of the text that is read alike whatever follows it. -/
theorem exists_isMarkup (h : markup s = .ok (item, rest)) :
    ∃ piece, s = piece ++ rest ∧ IsMarkup piece item := by
  fun_cases markup s with
  | case1 => exact absurd h (by simp [markup])
  | case2 body =>
      obtain ⟨piece, rfl, htakes⟩ := exists_takes_comment h
      exact ⟨'!' :: '-' :: piece, rfl, htakes⟩
  | case3 body =>
      obtain ⟨piece, rfl, htakes⟩ := exists_takes_cdata h
      exact ⟨'!' :: '[' :: piece, rfl, htakes⟩
  | case4 c body _ _ hkeyword =>
      have hread : doctype (c :: body) = .ok (item, rest) := by
        rcases hkeyword with rfl | rfl <;> simpa [markup] using h
      obtain ⟨piece, hbody, htakes⟩ := exists_takes_doctype hread
      cases piece with
      | nil => exact absurd (htakes []) (by simp [doctype, splitDoctype])
      | cons d piece =>
          obtain ⟨rfl, rfl⟩ := List.cons.inj hbody
          refine ⟨'!' :: c :: piece, rfl, ?_⟩
          intro after
          have hafter := htakes after
          rcases hkeyword with rfl | rfl <;> simpa [markup] using hafter
  | case5 c body _ _ hkeyword =>
      exact absurd h (by simp [markup, hkeyword])
  | case6 => exact absurd h (by simp [markup])
  | case7 body =>
      obtain ⟨piece, rfl, htakes⟩ := exists_takes_instruction h
      exact ⟨'?' :: piece, rfl, htakes⟩
  | case8 body =>
      obtain ⟨piece, rfl, htakes⟩ := exists_takes_closingTag h
      exact ⟨'/' :: piece, rfl, htakes⟩
  | case9 c tail _ _ hother hend hquestion hslash =>
      have hbang : c ≠ '!' := by
        rintro rfl
        cases tail with
        | nil => exact hend rfl rfl
        | cons d tail => exact hother d tail rfl rfl
      rw [markup_of_ne hbang hquestion hslash] at h
      obtain ⟨piece, htail, htakes⟩ := exists_takes_openingTag h
      cases piece with
      | nil => exact absurd (htakes []) (by simp [openingTag, splitTag])
      | cons d piece =>
          obtain ⟨rfl, -⟩ := List.cons.inj htail
          refine ⟨c :: piece, htail, ?_⟩
          intro after
          rw [List.cons_append, markup_of_ne hbang hquestion hslash]
          exact htakes after

/-! ## Complete texts -/

/-- A text that is read as these items whatever follows it. -/
def IsComplete (base : List Char) (its : List Item) : Prop :=
  ∀ after, items (base ++ after) = (items after).prepend its

variable {base more run tail : List Char} {its later : List Item}

theorem isComplete_nil : IsComplete [] [] := fun _ => rfl

theorem IsComplete.append (h : IsComplete base its) (hmore : IsComplete more later) :
    IsComplete (base ++ more) (its ++ later) := by
  intro after
  rw [List.append_assoc, h, hmore, Reading.prepend_prepend]

theorem IsMarkup.isComplete (h : IsMarkup piece item) : IsComplete ('<' :: piece) [item] := by
  intro after
  rw [List.cons_append, items_cons_markup (h after)]
  rfl

theorem isComplete_of_blank (h : ∀ c ∈ base, isBlank c = true) : IsComplete base [] := by
  intro after
  exact items_congr (List.dropWhile_append_of_pos h)

theorem IsComplete.items_eq (h : IsComplete base its) : items base = ⟨its, none⟩ := by
  have hnone : items [] = .ended none := items_of_blank rfl
  have hbase := h []
  rw [List.append_nil, hnone] at hbase
  rw [hbase]
  simp [Reading.prepend, Reading.ended]

/-! ## Text between markup -/

/-- The item that a text without markup is read as. There is none if it is blank. -/
def textItems (run : List Char) : List Item :=
  match run.dropWhile isBlank with
  | [] => []
  | c :: rest => [.text (String.ofList (Text.dropEndWhile isBlank (c :: rest)))]

theorem textItems_cases (run : List Char) :
    textItems run = [] ∨ ∃ raw, textItems run = [.text raw] := by
  unfold textItems
  split
  · exact Or.inl rfl
  · exact Or.inr ⟨_, rfl⟩

/-- A text without blanks at its ends is kept as it is, and blanks after it are dropped. -/
theorem textItems_of_trimmed {raw : List Char} (hempty : raw ≠ [])
    (htrim : isTrimmed (String.ofList raw) = true) (htail : ∀ c ∈ tail, isBlank c = true) :
    textItems (raw ++ tail) = [.text (String.ofList raw)] := by
  simp only [isTrimmed, String.toList_ofList, Bool.and_eq_true, Bool.not_eq_true'] at htrim
  obtain ⟨hhead, hlast⟩ := htrim
  have hstart : (raw ++ tail).dropWhile isBlank = raw ++ tail := by
    cases raw with
    | nil => exact absurd rfl hempty
    | cons c raw => exact List.dropWhile_cons_of_neg (by simpa using hhead)
  have hend : Text.dropEndWhile isBlank (raw ++ tail) = raw := by
    rw [dropEndWhile_append _ htail]
    obtain ⟨init, c, rfl⟩ := (List.eq_nil_or_concat raw).resolve_left hempty
    rw [List.concat_eq_append] at hlast ⊢
    exact Text.dropEndWhile_append_singleton init (by simpa using hlast)
  unfold textItems
  rw [hstart]
  split
  · rename_i hnil
    exact absurd (List.append_eq_nil_iff.1 hnil).1 hempty
  · rename_i hcons
    rw [← hcons, hend]

theorem textItems_of_blank (h : ∀ c ∈ run, isBlank c = true) : textItems run = [] := by
  unfold textItems
  rw [List.dropWhile_eq_nil_iff.2 h]

/-- A text that begins with markup or not at all. -/
def EndsText (tail : List Char) : Prop :=
  tail.takeWhile isText = []

theorem endsText_cons : EndsText ('<' :: tail) := rfl

theorem endsText_dropWhile : EndsText (tail.dropWhile isText) := by
  induction tail with
  | nil => rfl
  | cons c tail ih =>
      rw [List.dropWhile_cons]
      split
      · exact ih
      · rename_i hc
        exact List.takeWhile_cons_of_neg hc

theorem EndsText.dropWhile_eq (h : EndsText tail) : tail.dropWhile isText = tail := by
  have hparts := List.takeWhile_append_dropWhile (p := isText) (l := tail)
  rwa [h, List.nil_append] at hparts

theorem EndsText.eq_of_cons {c : Char} (h : EndsText (c :: tail)) : c = '<' := by
  have hc : ¬ isText c = true := by
    intro hc
    rw [EndsText, List.takeWhile_cons_of_pos hc] at h
    exact absurd h (by simp)
  simpa [isText] using hc

/-- Text ends where markup begins, and without the blanks around it it is one item. -/
theorem items_text_append (hrun : ∀ c ∈ run, isText c = true) (htail : EndsText tail) :
    items (run ++ tail) = (items tail).prepend (textItems run) := by
  unfold textItems
  cases hblank : run.dropWhile isBlank with
  | nil =>
      have hall : ∀ c ∈ run, isBlank c = true := List.dropWhile_eq_nil_iff.1 hblank
      exact isComplete_of_blank hall tail
  | cons c rest =>
      have hmem : ∀ d ∈ c :: rest, isText d = true := by
        intro d hd
        exact hrun d ((List.dropWhile_sublist (l := run) isBlank).subset (hblank ▸ hd))
      obtain ⟨hc, hrest⟩ := List.forall_mem_cons.1 hmem
      have hstart : (run ++ tail).dropWhile isBlank = c :: (rest ++ tail) := by
        rw [List.dropWhile_append, hblank]
        rfl
      have hlt : c ≠ '<' := by simpa [isText] using hc
      rw [items_of_text hstart hlt, List.takeWhile_append_of_pos hrest, htail, List.append_nil,
        List.dropWhile_append_of_pos hrest, htail.dropWhile_eq]
      rfl

theorem IsComplete.text_append (h : IsComplete ('<' :: base) its)
    (hrun : ∀ c ∈ run, isText c = true) :
    IsComplete (run ++ '<' :: base) (textItems run ++ its) := by
  intro after
  rw [List.append_assoc, List.cons_append, items_text_append hrun endsText_cons,
    ← List.cons_append, h, Reading.prepend_prepend]

theorem isText_of_isBlank {c : Char} (h : isBlank c = true) : isText c = true := by
  simp only [isText, bne_iff_ne, ne_eq]
  rintro rfl
  exact absurd h (by decide)

/-- Text begins with the blanks before it. -/
theorem exists_text_of_dropWhile {c : Char} (h : s.dropWhile isBlank = c :: rest) (hc : c ≠ '<') :
    ∃ front, s = front ++ rest.dropWhile isText ∧ ∀ d ∈ front, isText d = true := by
  refine ⟨s.takeWhile isBlank ++ c :: rest.takeWhile isText, ?_, ?_⟩
  · calc s = s.takeWhile isBlank ++ s.dropWhile isBlank := by rw [List.takeWhile_append_dropWhile]
      _ = s.takeWhile isBlank ++ c :: rest.takeWhile isText ++ rest.dropWhile isText := by
          rw [h, List.append_assoc, List.cons_append, List.takeWhile_append_dropWhile]
  · intro d hd
    rcases List.mem_append.1 hd with hd | hd
    · exact isText_of_isBlank (List.mem_takeWhile_imp hd)
    · rcases List.mem_cons.1 hd with rfl | hd
      · simpa [isText] using hc
      · exact List.mem_takeWhile_imp hd

/-- What a complete text and the text after it are read as. -/
theorem IsComplete.items_append_run (h : IsComplete base its) (hrun : ∀ c ∈ run, isText c = true) :
    items (base ++ run) = ⟨its ++ textItems run, none⟩ := by
  have hnone : items [] = .ended none := items_of_blank rfl
  have hend : items (run ++ []) = (items []).prepend (textItems run) :=
    items_text_append hrun rfl
  rw [List.append_nil, hnone] at hend
  rw [h, hend]
  simp [Reading.prepend, Reading.ended]

/-- A text that is read without a fault is complete but for text at its end. -/
theorem exists_complete (h : (items s).fault = none) :
    ∃ base its run, s = base ++ run ∧ IsComplete base its ∧ ∀ c ∈ run, isText c = true := by
  have hblanks (t : List Char) : ∀ c ∈ t.takeWhile isBlank, isBlank c = true :=
    fun _ => List.mem_takeWhile_imp
  fun_induction items s with
  | case1 s hblank =>
      refine ⟨[], [], s, rfl, isComplete_nil, ?_⟩
      intro c hc
      exact isText_of_isBlank (List.dropWhile_eq_nil_iff.1 hblank c hc)
  | case2 => exact absurd h (by simp [Reading.ended])
  | case3 s rest item after hm hs ih =>
      obtain ⟨base, its, run, rfl, hbase, hrun⟩ := ih h
      obtain ⟨piece, rfl, hpiece⟩ := exists_isMarkup hm
      refine ⟨s.takeWhile isBlank ++ ('<' :: piece ++ base), [item] ++ its, run, ?_, ?_, hrun⟩
      · calc s = s.takeWhile isBlank ++ s.dropWhile isBlank := by
              rw [List.takeWhile_append_dropWhile]
          _ = s.takeWhile isBlank ++ ('<' :: piece ++ base) ++ run := by
              rw [hs]
              simp
      · exact (isComplete_of_blank (hblanks s)).append (hpiece.isComplete.append hbase)
  | case4 s c rest hs hc ih =>
      obtain ⟨base, its, run, hrest, hbase, hrun⟩ := ih h
      obtain ⟨front, hfront, htext⟩ := exists_text_of_dropWhile hs hc
      have hwhole : s = front ++ (base ++ run) := by rw [hfront, hrest]
      cases base with
      | nil =>
          -- all of the text is text
          refine ⟨[], [], front ++ run, hwhole, isComplete_nil, ?_⟩
          intro d hd
          rcases List.mem_append.1 hd with hd | hd
          · exact htext d hd
          · exact hrun d hd
      | cons d base =>
          have hends : EndsText (d :: base ++ run) := hrest ▸ endsText_dropWhile
          obtain rfl := hends.eq_of_cons
          exact ⟨front ++ '<' :: base, textItems front ++ its, run, by rw [hwhole]; simp,
            hbase.text_append htext, hrun⟩

/-- Markup is read the same whatever text was before it. -/
theorem items_append_markup (h : (items s).fault = none) (tail : List Char) :
    items (s ++ '<' :: tail) = (items ('<' :: tail)).prepend (items s).items := by
  obtain ⟨base, its, run, rfl, hbase, hrun⟩ := exists_complete h
  rw [hbase.items_append_run hrun, List.append_assoc, hbase,
    items_text_append hrun endsText_cons, Reading.prepend_prepend]

/-- Text goes on up to the next markup. -/
theorem items_append_text {after : List Char} (hbase : IsComplete base its)
    (hrun : ∀ c ∈ run, isText c = true) :
    items (base ++ run ++ after) = (items (after.dropWhile isText)).prepend
      (its ++ textItems (run ++ after.takeWhile isText)) := by
  have hmore : ∀ c ∈ run ++ after.takeWhile isText, isText c = true := by
    intro c hc
    rcases List.mem_append.1 hc with hc | hc
    · exact hrun c hc
    · exact List.mem_takeWhile_imp hc
  have hsplit : base ++ run ++ after =
      base ++ (run ++ after.takeWhile isText ++ after.dropWhile isText) := by
    rw [List.append_assoc, List.append_assoc run, List.takeWhile_append_dropWhile]
  rw [hsplit, hbase, items_text_append hmore endsText_dropWhile, Reading.prepend_prepend]

theorem items_eq_text (after : List Char) : items after =
    (items (after.dropWhile isText)).prepend (textItems (after.takeWhile isText)) := by
  have hnone : ∀ c ∈ ([] : List Char), isText c = true := List.forall_mem_nil _
  have htext : items ([] ++ [] ++ after) = (items (after.dropWhile isText)).prepend
      ([] ++ textItems ([] ++ after.takeWhile isText)) := items_append_text isComplete_nil hnone
  exact htext

/-! ## Decoding -/

/-- Items whose texts can all be decoded. -/
def Decodes (its : List Item) : Prop :=
  ∀ raw, .text raw ∈ its → ∃ value, decode raw = .ok value

theorem decodes_cons :
    Decodes (item :: its) ↔
      (∀ raw, item = .text raw → ∃ value, decode raw = .ok value) ∧ Decodes its := by
  simp only [Decodes, List.mem_cons]
  constructor
  · intro h
    exact ⟨fun raw hraw => h raw (Or.inl hraw.symm), fun raw hraw => h raw (Or.inr hraw)⟩
  · rintro ⟨hitem, hits⟩ raw (hraw | hraw)
    · exact hitem raw hraw.symm
    · exact hits raw hraw

theorem decodes_append : Decodes (its ++ later) ↔ Decodes its ∧ Decodes later := by
  constructor
  · intro h
    exact ⟨fun raw hraw => h raw (List.mem_append_left _ hraw),
      fun raw hraw => h raw (List.mem_append_right _ hraw)⟩
  · rintro ⟨hits, hlater⟩ raw hraw
    rcases List.mem_append.1 hraw with hraw | hraw
    · exact hits raw hraw
    · exact hlater raw hraw

theorem exists_dropEndWhile_append (s : List Char) :
    ∃ trail, s = Text.dropEndWhile isBlank s ++ trail ∧ ∀ c ∈ trail, isBlank c = true := by
  refine ⟨(s.reverse.takeWhile isBlank).reverse, ?_, ?_⟩
  · rw [Text.dropEndWhile, ← List.reverse_append, List.takeWhile_append_dropWhile,
      List.reverse_reverse]
  · intro c hc
    exact List.mem_takeWhile_imp (List.mem_reverse.1 hc)

/-- Blanks are no part of a reference to name it, nor do they begin one. -/
theorem characterData_of_blank (h : ∀ c ∈ run, isBlank c = true) : CharacterData run run := by
  apply CharacterData.of_forall_ne
  rintro c hc rfl
  exact absurd (h _ hc) (by decide)

theorem all_isEntityName_of_blank (h : ∀ c ∈ run, isBlank c = true) :
    run.all isEntityName = true := by
  rw [List.all_eq_true]
  intro c hc
  have hblank := h c hc
  simp only [isEntityName, Bool.and_eq_true, bne_iff_ne, ne_eq]
  constructor
  · rintro rfl
    exact absurd hblank (by decide)
  · rintro rfl
    exact absurd hblank (by decide)

/-- Whether a text can be decoded does not depend on the blanks around it. -/
theorem decodes_textItems : Decodes (textItems run) ↔ ∃ value, CharacterData run value := by
  unfold textItems
  cases hblank : run.dropWhile isBlank with
  | nil =>
      have hall : ∀ c ∈ run, isBlank c = true := List.dropWhile_eq_nil_iff.1 hblank
      exact ⟨fun _ => ⟨run, characterData_of_blank hall⟩, fun _ _ hraw => absurd hraw (by simp)⟩
  | cons c rest =>
      have hlead : ∀ d ∈ run.takeWhile isBlank, isBlank d = true := fun _ => List.mem_takeWhile_imp
      have hrun : run = run.takeWhile isBlank ++ c :: rest := by
        rw [← hblank, List.takeWhile_append_dropWhile]
      obtain ⟨trail, hparts, htrail⟩ := exists_dropEndWhile_append (c :: rest)
      have hdecodes : Decodes [.text (String.ofList (Text.dropEndWhile isBlank (c :: rest)))] ↔
          ∃ value, CharacterData (Text.dropEndWhile isBlank (c :: rest)) value := by
        simp only [Decodes, List.mem_singleton, Item.text.injEq, forall_eq]
        constructor
        · rintro ⟨value, hvalue⟩
          exact ⟨value.toList, decode_eq_ok_iff.1 hvalue⟩
        · rintro ⟨value, hvalue⟩
          refine ⟨String.ofList value, decode_eq_ok_iff.2 ?_⟩
          rwa [String.toList_ofList]
      rw [hdecodes]
      constructor
      · rintro ⟨value, hvalue⟩
        have hend := hvalue.append (characterData_of_blank htrail)
        rw [← hparts] at hend
        have hwhole := (characterData_of_blank hlead).append hend
        rw [← hrun] at hwhole
        exact ⟨_, hwhole⟩
      · rintro ⟨value, hvalue⟩
        rw [hrun] at hvalue
        obtain ⟨v, hv⟩ := (characterData_of_blank hlead).decodes_append hvalue
        have hwhole := hv
        rw [hparts] at hwhole
        refine hwhole.decodes_or_dangles.resolve_right ?_
        intro hdangles
        have hend := hdangles.append_right (all_isEntityName_of_blank htrail)
        rw [← hparts] at hend
        exact hv.not_dangles hend

/-- A text that markup divides can be decoded if the whole text could. -/
theorem decodes_divided {raw last : List Char} (hrun : Decodes (textItems run))
    (hraw : ∃ value, CharacterData raw value) (hitem : ∀ text, item ≠ .text text) :
    Decodes (textItems (run ++ raw ++ last)) ↔
      Decodes (textItems run ++ [item] ++ textItems last) := by
  obtain ⟨u, hu⟩ := decodes_textItems.1 hrun
  obtain ⟨v, hv⟩ := hraw
  have hsingle : Decodes [item] := by
    intro text htext
    exact absurd (List.mem_singleton.1 htext).symm (hitem text)
  rw [decodes_append, decodes_append, and_iff_right ⟨hrun, hsingle⟩, decodes_textItems,
    decodes_textItems]
  constructor
  · rintro ⟨value, hvalue⟩
    exact (hu.append hv).decodes_append hvalue
  · rintro ⟨w, hw⟩
    exact ⟨_, (hu.append hv).append hw⟩

/-! ## Documents -/

/-- A text without the byte order mark that it may begin with. -/
def withoutMark (cs : List Char) : List Char :=
  if cs.head? = some '\uFEFF' then cs.tail else cs

theorem document_eq (text : String) : document text = items (withoutMark text.toList) := by
  unfold document withoutMark
  split
  · rename_i hmark
    rw [hmark]
    rfl
  · rename_i hmark
    rw [if_neg]
    intro hhead
    obtain ⟨rest, hrest⟩ := List.head?_eq_some_iff.1 hhead
    exact hmark rest hrest

theorem withoutMark_append (h : base ≠ [] ∨ tail.head? ≠ some '\uFEFF') :
    withoutMark (base ++ tail) = withoutMark base ++ tail := by
  cases base with
  | nil =>
      have htail : tail.head? ≠ some '\uFEFF' := h.resolve_left (by simp)
      exact if_neg htail
  | cons c base =>
      by_cases hc : c = '\uFEFF'
      · simp [withoutMark, hc]
      · simp [withoutMark, hc]

end ManagedGraph.Xml
